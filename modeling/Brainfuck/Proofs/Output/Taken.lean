import Brainfuck.Output.Forwarder
import Brainfuck.Proofs.Machine.Printed
import Brainfuck.Session.Recorder

/-!
# What a writer has taken

A writer that keeps a record shows which bytes it has taken, whatever it is that it wraps. Writing
everything takes a part of what is offered from the front, and all of it unless it fails. A
forwarder therefore adds to what was taken a part of the output that it holds to be pending.
-/

namespace Brainfuck

variable {ω : Type} [ByteWriter ω]

def WriterEvent.taken : WriterEvent → List UInt8
  | .wrote bytes => bytes
  | .writeFailed | .flushed | .flushFailed => []

/-- The bytes that a writer has taken, in order. -/
def RecordedWriter.taken (w : RecordedWriter ω) : List UInt8 :=
  w.events.toList.flatMap WriterEvent.taken

namespace RecordedWriter

theorem taken_write (w : RecordedWriter ω) (bytes : List UInt8) :
    (ByteWriter.write w bytes).2.taken = w.taken ++
      match (ByteWriter.write w bytes).1 with
      | .ok n => bytes.take n
      | .error _ => [] := by
  simp only [ByteWriter.write, taken, Array.toList_push, List.flatMap_append,
    List.flatMap_cons, List.flatMap_nil, List.append_nil, List.append_cancel_left_eq]
  split <;> simp_all [WriterEvent.taken]

theorem taken_flush (w : RecordedWriter ω) : (ByteWriter.flush w).2.taken = w.taken := by
  simp only [ByteWriter.flush, taken, Array.toList_push, List.flatMap_append,
    List.flatMap_cons, List.flatMap_nil, List.append_nil]
  split <;> simp [WriterEvent.taken]

theorem exists_taken_writeAll (w : RecordedWriter ω) (bytes : List UInt8) :
    ∃ part, part <+: bytes ∧ (writeAll w bytes).2.taken = w.taken ++ part ∧
      ((writeAll w bytes).1 = .ok () → part = bytes) := by
  induction hlen : bytes.length using Nat.strong_induction_on generalizing w bytes with
  | _ n ih =>
    cases bytes with
    | nil => exact ⟨[], List.nil_prefix, by simp [writeAll], fun _ => rfl⟩
    | cons b rest =>
      have htaken := w.taken_write (b :: rest)
      rcases hw : ByteWriter.write w (b :: rest) with ⟨cause | _ | k, w'⟩
      · rw [hw] at htaken
        have hall : writeAll w (b :: rest) = (.error cause, w') := by rw [writeAll, hw]
        rw [hall]
        exact ⟨[], List.nil_prefix, htaken, fun h => by cases h⟩
      · rw [hw] at htaken
        have hall : writeAll w (b :: rest) = (.error shortWriteCause, w') := by rw [writeAll, hw]
        rw [hall]
        exact ⟨[], List.nil_prefix, htaken, fun h => by cases h⟩
      · rw [hw] at htaken
        have hall : writeAll w (b :: rest) = writeAll w' (rest.drop k) := by rw [writeAll, hw]
        have hless : (rest.drop k).length < n := by
          rw [← hlen, List.length_drop, List.length_cons]
          omega
        obtain ⟨part, hpart, hp, hok⟩ := ih _ hless w' (rest.drop k) rfl
        have hsplit : b :: rest = (b :: rest).take (k + 1) ++ rest.drop k := by
          rw [List.take_succ_cons, List.cons_append, List.take_append_drop]
        rw [hall]
        refine ⟨(b :: rest).take (k + 1) ++ part, ?_, ?_, fun h => ?_⟩
        · have hprefix := (List.prefix_append_right_inj ((b :: rest).take (k + 1))).2 hpart
          rwa [← hsplit] at hprefix
        · rw [hp, htaken, List.append_assoc]
        · rw [hok h, ← hsplit]

end RecordedWriter

namespace Forwarder

variable {f : Forwarder (RecordedWriter ω)} {m : Machine} {u t : String}

theorem pending_eq {ω : Type} {f : Forwarder ω} {output : String} (hout : output = u ++ t)
    (hw : f.written = u.rawEndPos) : f.pending output = t := by
  rw [pending, Text.from?_eq_some_iff.2 ⟨u, hout, hw⟩, Option.getD_some]

/-- Sending takes a part of what is pending, all of it if it does not fail, and only then is it
noted as written. -/
theorem exists_taken_send (hout : m.output = u ++ t) (hw : f.written = u.rawEndPos) :
    ∃ part, part <+: Text.lowBytes t ∧ (f.send m).2.writer.taken = f.writer.taken ++ part ∧
      ((∃ cause, (f.send m).1 = .error cause) ∧ (f.send m).2.written = u.rawEndPos ∨
        (f.send m).1 = .ok () ∧ part = Text.lowBytes t ∧
          (f.send m).2.written = m.output.rawEndPos) := by
  have hpending := pending_eq hout hw
  by_cases hempty : t.isEmpty
  · have hsend : f.send m = (.ok (), f) := by simp [send, hpending, hempty]
    obtain rfl : t = "" := by simpa using hempty
    rw [hsend]
    refine ⟨[], List.nil_prefix, (List.append_nil _).symm, .inr ⟨rfl, by simp [Text.lowBytes], ?_⟩⟩
    rw [hout, String.append_empty, hw]
  · obtain ⟨part, hpart, htaken, hall⟩ := f.writer.exists_taken_writeAll (Text.lowBytes t)
    rcases hwrite : writeAll f.writer (Text.lowBytes t) with ⟨cause | ⟨⟩, w⟩
    · have hsend : f.send m = (.error cause, { f with writer := w }) := by
        simp [send, hpending, hempty, hwrite]
      rw [hwrite] at htaken
      rw [hsend]
      exact ⟨part, hpart, htaken, .inl ⟨⟨cause, rfl⟩, hw⟩⟩
    · have hsend : f.send m = (.ok (), ⟨w, m.output.rawEndPos⟩) := by
        simp [send, hpending, hempty, hwrite]
      rw [hwrite] at htaken hall
      rw [hsend]
      exact ⟨part, hpart, htaken, .inr ⟨rfl, hall rfl, rfl⟩⟩

theorem flush_eq_send (f : Forwarder (RecordedWriter ω)) (m : Machine) :
    (f.flush m).2.writer.taken = (f.send m).2.writer.taken ∧
      (f.flush m).2.written = (f.send m).2.written := by
  rcases hs : f.send m with ⟨cause | ⟨⟩, f'⟩
  · simp [flush, hs]
  · simp [flush, hs, RecordedWriter.taken_flush]

end Forwarder

end Brainfuck
