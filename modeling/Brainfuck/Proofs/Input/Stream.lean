import Brainfuck.Proofs.Input.LineText

/-!
# Reading a stream to its end

A stream of bytes is read a piece at a time, in order, whatever is in the pieces. A piece that is text
is handed out as that text, and one that is not is a failure and is passed over; the pieces behind it
are read as if it had been text. When all pieces are read there is nothing left, and so it stays.
-/

namespace Brainfuck

namespace InputSource

variable {σ : Type} [InputSource σ]

/-- The source that remains after a request for each of these machines. -/
def after (s : σ) (asked : List Machine) : σ :=
  asked.foldl (fun s m => (nextChunk s m).2) s

/-- What a source answers to a request that comes after those for the machines `asked`. -/
def answer (s : σ) (asked : List Machine) (m : Machine) : Except Error (Option String) :=
  (nextChunk (after s asked) m).1

end InputSource

open Lines InputSource

/-- A stream in pieces is read: each request takes the next piece off it. -/
structure Lines.Delivers (s : Lines) (pieces : List (List UInt8)) : Prop where
  remains : ∀ asked, (after s asked).bytes = (pieces.drop asked.length).flatten
  text : ∀ asked m text, pieces[asked.length]? = some (Text.utf8 text) →
    answer s asked m = .ok (some text) ∧ text ≠ ""
  failure : ∀ asked m piece, pieces[asked.length]? = some piece →
    (∀ text, Text.utf8 text ≠ piece) → answer s asked m = .error (.input invalidTextCause)
  finished : ∀ asked m, answer s asked m = .ok none ↔ pieces.length ≤ asked.length

variable {bytes : List UInt8} {pieces : List (List UInt8)}

theorem Lines.utf8_of_fromUTF8? {line : List UInt8} {text : String}
    (h : String.fromUTF8? ⟨line.toArray⟩ = some text) : Text.utf8 text = line := by
  rw [String.fromUTF8?] at h
  split at h
  · obtain rfl := Option.some.inj h
    rfl
  · cases h

theorem Lines.decodeLine_of_ne {line : List UInt8} (h : ∀ text, Text.utf8 text ≠ line) :
    decodeLine line = .error (.input invalidTextCause) := by
  rw [decodeLine]
  cases htext : String.fromUTF8? ⟨line.toArray⟩ with
  | none => rfl
  | some text => exact absurd (utf8_of_fromUTF8? htext) (h text)

theorem CutAfter.after_eq (h : CutAfter lineFeed bytes pieces) (asked : List Machine) :
    after (⟨bytes⟩ : Lines) asked = ⟨(pieces.drop asked.length).flatten⟩ := by
  induction asked generalizing bytes pieces with
  | nil =>
    rw [← h.flatten]
    rfl
  | cons m asked ih =>
    show after (nextChunk (⟨bytes⟩ : Lines) m).2 asked = _
    cases pieces with
    | nil =>
      obtain rfl : [] = bytes := h.flatten
      rw [List.drop_nil]
      exact (ih h).trans (by rw [List.drop_nil])
    | cons piece rest =>
      rw [h.nextChunk_eq]
      exact ih h.tail

theorem CutAfter.answer_of_getElem? (h : CutAfter lineFeed bytes pieces) {asked : List Machine}
    {piece : List UInt8} (hpiece : pieces[asked.length]? = some piece) (m : Machine) :
    answer (⟨bytes⟩ : Lines) asked m = (decodeLine piece).map some := by
  have hcut := h.drop asked.length
  rw [answer, h.after_eq]
  rw [List.drop_eq_getElem?_toList_append, hpiece] at hcut ⊢
  rw [hcut.nextChunk_eq]

theorem CutAfter.answer_of_length_le (h : CutAfter lineFeed bytes pieces) {asked : List Machine}
    (hover : pieces.length ≤ asked.length) (m : Machine) :
    answer (⟨bytes⟩ : Lines) asked m = .ok none := by
  rw [answer, h.after_eq, List.drop_eq_nil_of_le hover]
  rfl

theorem CutAfter.delivers (h : CutAfter lineFeed bytes pieces) :
    Lines.Delivers ⟨bytes⟩ pieces where
  remains := by
    intro asked
    rw [h.after_eq]
  text := by
    intro asked m text hpiece
    constructor
    · rw [h.answer_of_getElem? hpiece, decodeLine_utf8]
      rfl
    · rintro rfl
      exact h.nonempty _ (List.mem_of_getElem? hpiece) rfl
  failure := by
    intro asked m piece hpiece hne
    rw [h.answer_of_getElem? hpiece, decodeLine_of_ne hne]
    rfl
  finished := by
    intro asked m
    constructor
    · intro hnone
      by_contra hlt
      have hpiece := List.getElem?_eq_getElem (Nat.lt_of_not_le hlt)
      rw [h.answer_of_getElem? hpiece] at hnone
      cases hline : decodeLine pieces[asked.length] <;> rw [hline] at hnone <;> cases hnone
    · exact fun hover => h.answer_of_length_le hover m

/-- There is one way to cut a stream after each line feed and at its end, and the stream is read in
these pieces. When its bytes are those of a text, each piece is a chunk of the text, the chunks are
the text, and no chunk has a line feed but at its end. -/
theorem Lines.delivers_pieces (bytes : List UInt8) :
    ∃ pieces, CutAfter lineFeed bytes pieces ∧
      (∀ others, CutAfter lineFeed bytes others → others = pieces) ∧
      Delivers ⟨bytes⟩ pieces ∧
      ∀ s, Text.utf8 s = bytes → ∃ chunks : List String,
        pieces = chunks.map Text.utf8 ∧ String.join chunks = s ∧
        (∀ chunk ∈ chunks, '\n' ∉ chunk.toList.dropLast) ∧
        ∀ asked m, answer (⟨bytes⟩ : Lines) asked m = .ok chunks[asked.length]? := by
  obtain ⟨pieces, hcut⟩ := exists_cutAfter lineFeed bytes
  refine ⟨pieces, hcut, fun others hothers => hothers.unique hcut, hcut.delivers, ?_⟩
  rintro s rfl
  obtain ⟨chunks, hchunks, hjoin, hfeeds⟩ := exists_chunks s
  refine ⟨chunks, hcut.unique hchunks, hjoin, hfeeds, ?_⟩
  intro asked m
  cases hchunk : chunks[asked.length]? with
  | none =>
    apply hchunks.answer_of_length_le
    rw [List.length_map]
    exact List.getElem?_eq_none_iff.1 hchunk
  | some chunk =>
    have hpiece : (chunks.map Text.utf8)[asked.length]? = some (Text.utf8 chunk) := by
      rw [List.getElem?_map, hchunk]
      rfl
    rw [hchunks.answer_of_getElem? hpiece, decodeLine_utf8]
    rfl

/-- The line feed stands where the second byte of a character should be. -/
example (m : Machine) :
    let s : Lines := ⟨[0xC3, 0x0A, 0x0A, 0x41]⟩
    answer s [] m = .error (.input invalidTextCause) ∧ answer s [m] m = .ok (some "\n") ∧
      answer s [m, m] m = .ok (some "A") ∧ answer s [m, m, m] m = .ok none :=
  ⟨rfl, rfl, rfl, rfl⟩

end Brainfuck
