import Brainfuck.Proofs.Input.Pieces

/-!
# Text read by lines

In UTF-8 a line feed is a byte of its own and no part of another character. So the pieces of a text's
bytes are the bytes of its lines, and reading them hands out the text, a chunk for each line.
-/

namespace Brainfuck

/-- A source hands out these chunks and then has nothing left, whatever it is shown. -/
def InputSource.Hands {σ : Type} [InputSource σ] : σ → List String → Prop
  | s, [] => ∀ m, (nextChunk s m).1 = .ok none
  | s, chunk :: chunks => ∀ m, (nextChunk s m).1 = .ok (some chunk) ∧ Hands (nextChunk s m).2 chunks

def Text.utf8 (s : String) : List UInt8 := s.toUTF8.data.toList

open Lines

variable {bytes piece : List UInt8} {rest : List (List UInt8)} {cs : List Char}
  {lines : List (List Char)}

theorem Lines.utf8_ofList (cs : List Char) :
    Text.utf8 (String.ofList cs) = cs.flatMap String.utf8EncodeChar := by
  simp [Text.utf8, List.utf8Encode]

theorem Lines.decodeLine_utf8 (s : String) : decodeLine (Text.utf8 s) = .ok s := by
  have hvalid : String.fromUTF8? ⟨(Text.utf8 s).toArray⟩ = some s := by
    have hbytes : (⟨(Text.utf8 s).toArray⟩ : ByteArray) = s.toByteArray := by
      simp [Text.utf8]
    rw [hbytes, String.fromUTF8?, dif_pos s.isValidUTF8]
    rfl
  rw [decodeLine, hvalid]

theorem Lines.ne_lineFeed_of_mem {c : Char} (hc : c ≠ '\n') :
    ∀ b ∈ String.utf8EncodeChar c, b ≠ lineFeed := by
  have hval : c.toNat ≠ 10 := by
    intro h
    exact hc (Char.ext (UInt32.toNat_inj.1 h))
  have htoNat : c.val.toNat = c.toNat := rfl
  intro b hb hlf
  subst hlf
  simp only [String.utf8EncodeChar, lineFeed, htoNat] at hb
  split at hb
  · simp [← UInt8.toNat_inj] at hb
    omega
  · split at hb
    · simp [← UInt8.toNat_inj] at hb
      omega
    · split at hb
      · simp [← UInt8.toNat_inj] at hb
        omega
      · simp [← UInt8.toNat_inj] at hb
        omega

theorem Lines.lineFeed_notMem_flatMap (h : '\n' ∉ cs) :
    lineFeed ∉ cs.flatMap String.utf8EncodeChar := by
  intro hmem
  obtain ⟨c, hc, hb⟩ := List.mem_flatMap.1 hmem
  exact ne_lineFeed_of_mem (fun heq => h (heq ▸ hc)) lineFeed hb rfl

/-- The pieces of a text's bytes are the bytes of the text's lines. -/
theorem CutAfter.flatMap_utf8 (h : CutAfter '\n' cs lines) :
    CutAfter lineFeed (cs.flatMap String.utf8EncodeChar)
      (lines.map (·.flatMap String.utf8EncodeChar)) := by
  induction lines generalizing cs with
  | nil =>
    obtain rfl : [] = cs := h.flatten
    exact cutAfter_nil lineFeed
  | cons line rest ih =>
    rcases h.cons_cases with ⟨hno, hne, rfl, rfl⟩ | ⟨line, hno, rfl, rfl⟩
    · apply cutAfter_singleton
      · obtain ⟨c, cs, rfl⟩ := List.exists_cons_of_ne_nil hne
        rw [List.flatMap_cons, ne_eq, List.append_eq_nil_iff]
        exact fun hnil => String.utf8EncodeChar_ne_nil hnil.1
      · exact lineFeed_notMem_flatMap hno
    · have hfeed : String.utf8EncodeChar '\n' = [lineFeed] := rfl
      have hcons := (ih h.tail).cons (lineFeed_notMem_flatMap hno)
      simpa [hfeed] using hcons

theorem CutAfter.nextChunk_eq (h : CutAfter lineFeed bytes (piece :: rest)) (m : Machine) :
    InputSource.nextChunk (⟨bytes⟩ : Lines) m =
      ((decodeLine piece).map some, ⟨rest.flatten⟩) := by
  have hread := h.splitLine_eq
  cases bytes with
  | nil => exact absurd rfl h.ne_nil
  | cons b bs =>
    show ((decodeLine (splitLine (b :: bs)).1).map some, (⟨(splitLine (b :: bs)).2⟩ : Lines)) = _
    rw [hread]

theorem Lines.nextChunk_splitLine (bytes : List UInt8) (m : Machine) :
    InputSource.nextChunk (⟨bytes⟩ : Lines) m =
      ((InputSource.nextChunk (⟨(splitLine bytes).1⟩ : Lines) m).1, ⟨(splitLine bytes).2⟩) ∧
    (InputSource.nextChunk (⟨(splitLine bytes).1⟩ : Lines) m).2 = ⟨[]⟩ := by
  obtain ⟨_ | ⟨piece, rest⟩, hcut⟩ := exists_cutAfter lineFeed bytes
  · obtain rfl : [] = bytes := hcut.flatten
    exact ⟨rfl, rfl⟩
  · rw [hcut.splitLine_eq, hcut.nextChunk_eq, hcut.head.nextChunk_eq]
    exact ⟨rfl, rfl⟩

theorem CutAfter.hands {chunks : List String}
    (h : CutAfter lineFeed bytes (chunks.map Text.utf8)) :
    InputSource.Hands (⟨bytes⟩ : Lines) chunks := by
  induction chunks generalizing bytes with
  | nil =>
    obtain rfl : [] = bytes := h.flatten
    exact fun m => rfl
  | cons chunk chunks ih =>
    intro m
    rw [h.nextChunk_eq m, decodeLine_utf8]
    exact ⟨rfl, ih h.tail⟩

/-- The bytes of a text in pieces are the bytes of its lines, each a chunk of the text with no line
feed but at its end. -/
theorem Lines.exists_chunks (s : String) :
    ∃ chunks : List String, CutAfter lineFeed (Text.utf8 s) (chunks.map Text.utf8) ∧
      String.join chunks = s ∧ ∀ chunk ∈ chunks, '\n' ∉ chunk.toList.dropLast := by
  obtain ⟨lines, hlines⟩ := exists_cutAfter '\n' s.toList
  refine ⟨lines.map String.ofList, ?_, ?_, ?_⟩
  · have hbytes := hlines.flatMap_utf8
    rw [← utf8_ofList, String.ofList_toList] at hbytes
    simpa [Function.comp_def, utf8_ofList] using hbytes
  · rw [← String.toList_inj, String.toList_join, List.flatMap_map, ← hlines.flatten]
    simp [List.flatMap_def]
  · intro chunk hchunk
    obtain ⟨line, hline, rfl⟩ := List.mem_map.1 hchunk
    rw [String.toList_ofList]
    exact hlines.inside line hline

theorem Lines.exists_hands_utf8 (s : String) :
    ∃ chunks, InputSource.Hands (⟨Text.utf8 s⟩ : Lines) chunks ∧ String.join chunks = s := by
  obtain ⟨chunks, hcut, hjoin, -⟩ := exists_chunks s
  exact ⟨chunks, hcut.hands, hjoin⟩

end Brainfuck
