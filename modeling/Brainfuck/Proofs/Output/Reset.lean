import Brainfuck.Proofs.Output.Buffer
import Brainfuck.Proofs.Run.Prompts

/-!
# Forwarding across resets

A reset empties what a machine has printed, and a forwarder does not hear of it: it goes on from the
position that it remembers. What was printed before the reset is not sent again. But what is printed
after it is sent only from that position on, so it lacks as much of its beginning as had been sent
of the output before. It is whole if nothing had been sent.
-/

namespace Brainfuck

/-! ### Positions in a text that grows -/

namespace Text

variable {s t r : String} {p : String.Pos.Raw}

theorem from?_append (h : from? s p = some t) (r : String) : from? (s ++ r) p = some (t ++ r) := by
  obtain ⟨u, rfl, hp⟩ := from?_eq_some_iff.1 h
  exact from?_eq_some_iff.2 ⟨u, String.append_assoc, hp⟩

theorem lowBytes_suffix_of_from? (h : from? s p = none) (ht : from? (s ++ r) p = some t) :
    lowBytes t <:+ lowBytes r := by
  obtain ⟨u, hu, rfl⟩ := from?_eq_some_iff.1 ht
  have hlist : s.toList ++ r.toList = u.toList ++ t.toList := by
    rw [← String.toList_append, hu, String.toList_append]
  rcases List.append_eq_append_iff.1 hlist with ⟨l, -, hr⟩ | ⟨l, hs, -⟩
  · rw [lowBytes, lowBytes, hr, List.map_append]
    exact List.suffix_append _ _
  · have hsplit : s = u ++ String.ofList l := by
      rw [← String.toList_inj, String.toList_append, String.toList_ofList, hs]
    have hfrom := from?_eq_some_iff.2 ⟨u, hsplit, rfl⟩
    rw [h] at hfrom
    cases hfrom

@[simp] theorem getD_from?_empty (p : String.Pos.Raw) : (from? "" p).getD "" = "" := by
  cases hs : from? "" p with
  | none => rfl
  | some t =>
    obtain ⟨u, hu, -⟩ := from?_eq_some_iff.1 hs
    exact (String.append_eq_empty_iff.1 hu.symm).2

theorem eq_empty_of_lowBytes_eq_nil (h : lowBytes s = []) : s = "" := by
  rw [← String.toList_inj]
  exact List.map_eq_nil_iff.1 h

theorem lowBytes_getD_from?_eq_iff :
    lowBytes ((from? s p).getD "") = lowBytes s ↔ p = 0 ∨ s = "" := by
  constructor
  · intro h
    cases hs : from? s p with
    | some t =>
      obtain ⟨u, rfl, rfl⟩ := from?_eq_some_iff.1 hs
      rw [hs, Option.getD_some, lowBytes_append] at h
      rw [eq_empty_of_lowBytes_eq_nil (List.self_eq_append_left.1 h)]
      exact .inl rfl
    | none =>
      rw [hs] at h
      exact .inr (eq_empty_of_lowBytes_eq_nil h.symm)
  · rintro (rfl | rfl)
    · rw [from?_zero, Option.getD_some]
    · rw [getD_from?_empty]

end Text

/-! ### What is printed and sent -/

/-- The byte that the next step of a machine prints, if it prints one. -/
def Machine.prints (m : Machine) : List UInt8 :=
  if m.step.1 = .executed ∧ m.current? = some '.' then [m.value] else []

theorem Machine.exists_output_prints (m : Machine) :
    ∃ t, m.step.2.output = m.output ++ t ∧ Text.lowBytes t = m.prints := by
  obtain ⟨t, ht⟩ := m.exists_output_step
  refine ⟨t, ht, ?_⟩
  apply (List.append_right_inj (Text.lowBytes m.output)).1
  rw [← Text.lowBytes_append, ← ht]
  by_cases hr : m.step.1 = .executed
  · have hs : m.step = (.executed, m.step.2) := Prod.ext hr rfl
    rw [lowBytes_of_step_executed hs]
    by_cases hdot : m.current? = some '.' <;> simp [Transcript.printed, prints, hr, hdot]
  · have hsame : m.step.2.output = m.output := by
      cases hr' : m.step.1 with
      | executed => exact absurd hr' hr
      | blocked => rw [step_eq_of_blocked hr']
      | done => rw [(step_eq_of_done hr').1]
    simp [hsame, prints, hr]

variable {ω : Type} [ByteWriter ω]

/-- What becomes of a machine and a forwarder by steps, supplies of input, resets and flushes, if the
forwarder is as it may be at each reset, and the bytes that were printed since the last flush or
reset. -/
inductive Relays (may : Forwarder (RecordedWriter ω) → Prop) (m : Machine)
    (f : Forwarder (RecordedWriter ω)) :
    Machine → Forwarder (RecordedWriter ω) → List UInt8 → Prop
  | start : Relays may m f m f (Text.lowBytes m.output)
  | step {m' f' news} : Relays may m f m' f' news →
      Relays may m f m'.step.2 f' (news ++ m'.prints)
  | supply {m' f' news} (text : String) : Relays may m f m' f' news →
      Relays may m f (m'.supply text) f' news
  | reset {m' f' news} : Relays may m f m' f' news → may f' → Relays may m f m'.reset f' []
  | flush {m' f' news} : Relays may m f m' f' news → Relays may m f m' (f'.flush m').2 []

variable {w : ω} {may : Forwarder (RecordedWriter ω) → Prop} {m m' : Machine}
  {f f' : Forwarder (RecordedWriter ω)} {news : List UInt8}

namespace Forwarder

theorem pending_append {ω : Type} {f : Forwarder ω} {output : String}
    (h : Text.lowBytes (f.pending output) <:+ news) (t : String) :
    Text.lowBytes (f.pending (output ++ t)) <:+ news ++ Text.lowBytes t := by
  cases hs : Text.from? output f.written with
  | some rest =>
    rw [pending, hs] at h
    rw [pending, Text.from?_append hs]
    obtain ⟨before, rfl⟩ := h
    refine ⟨before, ?_⟩
    rw [Option.getD_some, Option.getD_some, Text.lowBytes_append, List.append_assoc]
  | none =>
    rw [pending]
    cases ht : Text.from? (output ++ t) f.written with
    | none => exact List.nil_suffix
    | some rest => exact (Text.lowBytes_suffix_of_from? hs ht).trans (List.suffix_append _ _)

/-- A flush to a writer that does not fail sends all that is pending, and remembers the end of the
output if that was anything. -/
theorem flush_eq_of_reliable (h : ByteWriter.Reliable f.writer.writer) (m : Machine) :
    (f.flush m).1 = .ok () ∧ ByteWriter.Reliable (f.flush m).2.writer.writer ∧
      (f.flush m).2.writer.taken = f.writer.taken ++ Text.lowBytes (f.pending m.output) ∧
      (f.flush m).2.written =
        if (f.pending m.output).isEmpty then f.written else m.output.rawEndPos := by
  obtain ⟨-, f', hf, hreliable, -⟩ := flush_of_reliable h m
  obtain ⟨htaken, hwritten⟩ := f.flush_eq_send m
  rw [htaken, hwritten]
  refine ⟨by rw [hf], by rw [hf]; exact hreliable, ?_⟩
  by_cases hempty : (f.pending m.output).isEmpty
  · have hnone : f.pending m.output = "" := by simpa using hempty
    simp [send, hnone, Text.lowBytes]
  · obtain ⟨w', hall, -⟩ :=
      RecordedWriter.writeAll_of_reliable h (Text.lowBytes (f.pending m.output))
    obtain ⟨part, -, hpart, hok⟩ :=
      f.writer.exists_taken_writeAll (Text.lowBytes (f.pending m.output))
    rw [hall] at hpart hok
    simp [send, hempty, hall, hpart, hok rfl]

end Forwarder

theorem Relays.reliable (h : Relays may m f m' f' news)
    (hf : ByteWriter.Reliable f.writer.writer) : ByteWriter.Reliable f'.writer.writer := by
  induction h with
  | start => exact hf
  | step _ ih => exact ih
  | supply text _ ih => exact ih
  | reset _ _ ih => exact ih
  | flush _ ih => exact (Forwarder.flush_eq_of_reliable ih _).2.1

/-! ### Nothing is sent again -/

namespace Forwarder

theorem pending_flush (h : ByteWriter.Reliable f.writer.writer) (m : Machine) :
    (f.flush m).2.pending m.output = "" := by
  have hwritten := (flush_eq_of_reliable h m).2.2.2
  by_cases hempty : (f.pending m.output).isEmpty
  · rw [if_pos hempty] at hwritten
    rw [pending, hwritten]
    exact String.isEmpty_iff.1 hempty
  · rw [if_neg hempty] at hwritten
    rw [pending, hwritten, Text.from?_rawEndPos, Option.getD_some]

end Forwarder

/-- However stale the position is, only what is new is pending, if not all of it. -/
theorem Relays.pending_suffix (h : Relays may m f m' f' news)
    (hf : ByteWriter.Reliable f.writer.writer) (hw : f.written = 0) :
    Text.lowBytes (f'.pending m'.output) <:+ news := by
  induction h with
  | start =>
    rw [Forwarder.pending, hw, Text.from?_zero]
    exact List.suffix_rfl
  | @step m' f' news _ ih =>
    obtain ⟨t, ht, hprints⟩ := m'.exists_output_prints
    rw [ht, ← hprints]
    exact Forwarder.pending_append ih t
  | supply text _ ih => exact ih
  | @reset m' f' news _ _ _ =>
    have hempty : f'.pending m'.reset.output = "" := Text.getD_from?_empty f'.written
    rw [hempty]
    exact List.nil_suffix
  | flush h _ =>
    rw [Forwarder.pending_flush (h.reliable hf)]
    exact List.nil_suffix

/-! ### What is sent while nothing is stale -/

/-- What is new is what stands in an output after the part that counts as written. -/
def Forwarder.Owes {ω : Type} (f : Forwarder ω) (output : String) (news : List UInt8) : Prop :=
  ∃ u t, output = u ++ t ∧ f.written = u.rawEndPos ∧ Text.lowBytes t = news

theorem Relays.owes (h : Relays (fun f => f.written = 0) m f m' f' news)
    (hf : ByteWriter.Reliable f.writer.writer) (hw : f.written = 0) : f'.Owes m'.output news := by
  induction h with
  | start => exact ⟨"", m.output, by simp, hw, rfl⟩
  | @step m' f' news _ ih =>
    obtain ⟨t, ht, hprints⟩ := m'.exists_output_prints
    obtain ⟨u, v, hout, hu, hv⟩ := ih
    refine ⟨u, v ++ t, ?_, hu, ?_⟩
    · rw [ht, hout, String.append_assoc]
    · rw [Text.lowBytes_append, hv, hprints]
  | supply text _ ih => exact ih
  | reset _ hmay _ => exact ⟨"", "", rfl, hmay, rfl⟩
  | @flush m' f' news h ih =>
    obtain ⟨u, t, hout, hu, -⟩ := ih
    refine ⟨m'.output, "", String.append_empty.symm, ?_, rfl⟩
    rw [(Forwarder.flush_eq_of_reliable (h.reliable hf) m').2.2.2, Forwarder.pending_eq hout hu]
    split
    · next hempty =>
      have ht : t = "" := by simpa using hempty
      rw [hu, hout, ht, String.append_empty]
    · rfl

/-! ### What a stale position loses -/

/-- Beyond what was taken at first, the bytes taken are those of an output from a position up to the
part that counts as written, or none as yet. -/
def Forwarder.TookFrom (f : Forwarder (RecordedWriter ω)) (p : String.Pos.Raw) (base : List UInt8)
    (output : String) : Prop :=
  f.written = p ∧ f.writer.taken = base ∨
    ∃ u v t, output = u ++ (v ++ t) ∧ u.rawEndPos = p ∧ f.written = (u ++ v).rawEndPos ∧
      f.writer.taken = base ++ Text.lowBytes v

namespace Forwarder

variable {p : String.Pos.Raw} {base : List UInt8} {output : String}

omit [ByteWriter ω] in
theorem TookFrom.append (h : f.TookFrom p base output) (r : String) :
    f.TookFrom p base (output ++ r) := by
  rcases h with hnone | ⟨u, v, t, rfl, hu, hv, htaken⟩
  · exact .inl hnone
  · exact .inr ⟨u, v, t ++ r, by simp only [String.append_assoc], hu, hv, htaken⟩

theorem TookFrom.flush (h : f.TookFrom p base m.output)
    (hf : ByteWriter.Reliable f.writer.writer) :
    (f.flush m).2.TookFrom p base m.output ∧
      (f.flush m).2.writer.taken =
        base ++ Text.lowBytes ((Text.from? m.output p).getD "") := by
  obtain ⟨-, -, htaken, hwritten⟩ := flush_eq_of_reliable hf m
  rcases h with ⟨rfl, rfl⟩ | ⟨u, v, t, hout, rfl, hv, hbase⟩
  · refine ⟨?_, htaken⟩
    by_cases hempty : (f.pending m.output).isEmpty
    · rw [if_pos hempty] at hwritten
      rw [String.isEmpty_iff.1 hempty] at htaken
      exact .inl ⟨hwritten, htaken.trans (List.append_nil _)⟩
    · rw [if_neg hempty] at hwritten
      cases hs : Text.from? m.output f.written with
      | none =>
        rw [pending, hs] at hempty
        exact absurd rfl hempty
      | some t =>
        obtain ⟨u, hout, hu⟩ := Text.from?_eq_some_iff.1 hs
        rw [pending, hs, Option.getD_some] at htaken
        refine .inr ⟨u, t, "", ?_, hu.symm, ?_, htaken⟩
        · rw [String.append_empty, hout]
        · rw [hwritten, hout]
  · have hpending : f.pending m.output = t := pending_eq (hout.trans String.append_assoc.symm) hv
    have hfrom : Text.from? m.output u.rawEndPos = some (v ++ t) :=
      Text.from?_eq_some_iff.2 ⟨u, hout, rfl⟩
    rw [hpending, hbase, List.append_assoc, ← Text.lowBytes_append] at htaken
    rw [hpending] at hwritten
    refine ⟨.inr ⟨u, v ++ t, "", ?_, rfl, ?_, htaken⟩, ?_⟩
    · rw [String.append_empty, hout]
    · rw [hwritten]
      split
      · next hempty =>
        rw [hv, String.isEmpty_iff.1 hempty, String.append_empty]
      · rw [hout]
    · rw [htaken, hfrom, Option.getD_some]

end Forwarder

theorem Relays.tookFrom (h : Relays (fun _ => False) m f m' f' news)
    (hf : ByteWriter.Reliable f.writer.writer) :
    f'.TookFrom f.written f.writer.taken m'.output := by
  induction h with
  | start => exact .inl ⟨rfl, rfl⟩
  | @step m' f' news _ ih =>
    obtain ⟨t, ht⟩ := m'.exists_output_step
    rw [ht]
    exact ih.append t
  | supply text _ ih => exact ih
  | reset _ hmay _ => exact hmay.elim
  | flush h ih => exact (ih.flush (h.reliable hf)).1

/-! ### Flushes across resets -/

theorem Relays.plus_output {start : Machine} (hstart : start = Machine.load ⟨#['+', '.']⟩)
    (h : Relays may m f start f' []) : Relays may m f start.step.2.step.2 f' [1] := by
  have hprints : [] ++ start.prints ++ start.step.2.prints = [1] := by
    rw [hstart]
    decide
  rw [← hprints]
  exact .step (.step h)

theorem Relays.reset_plus_output {k : Machine} (hk : k.reset = Machine.load ⟨#['+', '.']⟩)
    (h : Relays may m f k f' news) (hmay : may f') :
    Relays may m f k.reset.step.2.step.2 f' [1] := by
  apply Relays.plus_output hk
  exact .reset h hmay

/-- Each flush sends all that is new as long as a reset comes only where nothing had been sent of the
output that it empties. In any case a flush sends only what is new, if not all of it: what it has
sent since a reset is the output from the position on that was remembered then. -/
theorem taken_across_resets (hw : ByteWriter.Reliable w) :
    (Relays (fun f => f.written = 0) m { writer := ⟨w, #[]⟩ } m' f' news →
      (f'.flush m').1 = .ok () ∧ (f'.flush m').2.writer.taken = f'.writer.taken ++ news) ∧
    (Relays (fun _ => True) m { writer := ⟨w, #[]⟩ } m' f' news →
      (f'.flush m').1 = .ok () ∧
        ∃ part, part <:+ news ∧ (f'.flush m').2.writer.taken = f'.writer.taken ++ part) ∧
    ∀ {k : Machine} {g : Forwarder (RecordedWriter ω)} {before : List UInt8},
      Relays (fun _ => True) m { writer := ⟨w, #[]⟩ } k g before →
      Relays (fun _ => False) k.reset g m' f' news →
      ∃ sent, sent = Text.lowBytes ((Text.from? m'.output g.written).getD "") ∧
        (f'.flush m').2.writer.taken = g.writer.taken ++ sent ∧
        (sent = Text.lowBytes m'.output ↔ g.written = 0 ∨ m'.output = "") := by
  refine ⟨fun h => ?_, fun h => ?_, fun hk h => ?_⟩
  · obtain ⟨hok, -, htaken, -⟩ := Forwarder.flush_eq_of_reliable (h.reliable hw) m'
    obtain ⟨u, t, hout, hu, rfl⟩ := h.owes hw rfl
    rw [Forwarder.pending_eq hout hu] at htaken
    exact ⟨hok, htaken⟩
  · obtain ⟨hok, -, htaken, -⟩ := Forwarder.flush_eq_of_reliable (h.reliable hw) m'
    exact ⟨hok, _, h.pending_suffix hw rfl, htaken⟩
  · have hg := hk.reliable hw
    refine ⟨_, rfl, ?_, Text.lowBytes_getD_from?_eq_iff⟩
    exact ((h.tookFrom hg).flush (h.reliable hg)).2

/-- A reset before anything was sent, and one after all was sent. -/
theorem taken_across_resets_early_late :
    ∃ (m : Machine) (f g : Forwarder (RecordedWriter ByteBuffer)),
      m.output = "\x01" ∧
      Relays (fun f => f.written = 0) (Machine.load ⟨#['+', '.']⟩) { writer := ⟨{}, #[]⟩ } m f [1] ∧
      (f.flush m).2.writer.taken = f.writer.taken ++ [1] ∧
      Relays (fun _ => True) (Machine.load ⟨#['+', '.']⟩) { writer := ⟨{}, #[]⟩ } m g [1] ∧
      (∃ part, part <:+ [1] ∧ (g.flush m).2.writer.taken = g.writer.taken ++ part) ∧
      ∃ sent, (f.flush m).2.writer.taken ++ sent = (g.flush m).2.writer.taken ∧
        (sent = [1] ↔ g.written = 0) := by
  let start := Machine.load ⟨#['+', '.']⟩
  let m := start.step.2.step.2
  let f : Forwarder (RecordedWriter ByteBuffer) := { writer := ⟨{}, #[]⟩ }
  have hearly : Relays (fun f => f.written = 0) start f m f [1] :=
    .reset_plus_output rfl (.step .start) rfl
  have hlate : Relays (fun _ => True) start f m (f.flush m).2 [] := .flush (.plus_output rfl .start)
  have hagain : Relays (fun _ => True) start f m (f.flush m).2 [1] :=
    .reset_plus_output rfl hlate trivial
  have hsince : Relays (fun _ => False) m.reset (f.flush m).2 m (f.flush m).2 [1] :=
    .plus_output rfl .start
  have hw := ByteBuffer.reliable {}
  obtain ⟨sent, -, htaken, hall⟩ := (taken_across_resets hw).2.2 hlate hsince
  refine ⟨m, f, (f.flush m).2, rfl, hearly,
    ((taken_across_resets hw).1 hearly).2, hagain,
    ((taken_across_resets hw).2.1 hagain).2, sent, htaken.symm, ?_⟩
  have hone : Text.lowBytes m.output = [1] := by decide
  have hsome : m.output ≠ "" := by decide
  simpa [hone, hsome] using hall

/-- What is printed after a reset is lost if as much was sent before it. -/
theorem not_taken_across_resets_of_sent :
    ¬ ∀ (m : Machine) (f : Forwarder (RecordedWriter ByteBuffer)) (news : List UInt8),
      Relays (fun _ => True) (Machine.load ⟨#['+', '.']⟩) { writer := ⟨{}, #[]⟩ } m f news →
      (f.flush m).2.writer.taken = f.writer.taken ++ news := by
  intro h
  let start := Machine.load ⟨#['+', '.']⟩
  let m := start.step.2.step.2
  let f : Forwarder (RecordedWriter ByteBuffer) := { writer := ⟨{}, #[]⟩ }
  have hlate : Relays (fun _ => True) start f m (f.flush m).2 [] := .flush (.plus_output rfl .start)
  have hagain : Relays (fun _ => True) start f m (f.flush m).2 [1] :=
    .reset_plus_output rfl hlate trivial
  have hw : ByteWriter.Reliable f.writer.writer := ByteBuffer.reliable {}
  have htaken := (Forwarder.flush_eq_of_reliable (hlate.reliable hw) m).2.2.1
  rw [Forwarder.pending_flush hw, h _ _ _ hagain] at htaken
  cases List.append_cancel_left htaken

end Brainfuck
