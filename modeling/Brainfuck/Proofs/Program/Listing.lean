import Brainfuck.Proofs.Program.Comments
import Brainfuck.Proofs.Program.Instructions
import Brainfuck.Proofs.Program.Nesting
import Brainfuck.Proofs.Text.Reading

/-!
# Listings read back

The text of a listing holds all instructions of a program with their positions, so they can be read
back from it and nothing but comments is lost. The depth of a line is the number of loops around its
instruction: it follows the brackets that are open, and a closing bracket that closes nothing leaves
it at zero.
-/

namespace Brainfuck

/-! ### A line -/

theorem Text.toList_pushn (s : String) (c : Char) (n : Nat) :
    (s.pushn c n).toList = s.toList ++ List.replicate n c := by
  rw [String.pushn_eq_repeat_push]
  induction n with
  | zero => rw [Nat.repeat, List.replicate_zero, List.append_nil]
  | succ n ih => rw [Nat.repeat, String.toList_push, ih, List.append_assoc, List.replicate_succ']

namespace ListingLine

def chars (l : ListingLine) : List Char :=
  (Nat.toDigits 10 l.position).leftpad 4 '0' ++ (':' :: ' ' ::
    (List.replicate (2 * l.depth) ' ' ++
      (l.instruction.symbol :: ' ' :: l.instruction.mnemonic.toList)))

theorem toList_text (l : ListingLine) : l.text.toList = l.chars ++ ['\n'] := by
  simp only [text, chars, String.toList_append, Text.toList_padStart, Text.toList_toString,
    Text.toList_pushn, Char.toString_eq_singleton, String.toList_singleton]
  simp

theorem lineFeed_notMem_chars (l : ListingLine) : '\n' ∉ l.chars := by
  have hposition : '\n' ∉ (Nat.toDigits 10 l.position).leftpad 4 '0' := by
    intro h
    exact absurd (Text.isDigit_of_mem_leftpad h) (by decide)
  have hindent : '\n' ∉ List.replicate (2 * l.depth) ' ' := by
    intro h
    exact absurd (List.eq_of_mem_replicate h) (by decide)
  have hword : '\n' ∉ l.instruction.symbol :: ' ' :: l.instruction.mnemonic.toList := by
    cases l.instruction <;> decide
  simp only [chars, List.mem_append, List.mem_cons, not_or]
  exact ⟨hposition, by decide, by decide, hindent, by simpa using hword⟩

theorem ofChars?_chars (l : ListingLine) : ofChars? l.chars = some l := by
  have hdigits : ∀ c ∈ (Nat.toDigits 10 l.position).leftpad 4 '0', c.isDigit = true := by
    intro c hc
    exact Text.isDigit_of_mem_leftpad hc
  have hindent : ∀ c ∈ List.replicate (2 * l.depth) ' ', decide (c = ' ') = true := by
    intro c hc
    exact decide_eq_true (List.eq_of_mem_replicate hc)
  have hsymbol : decide (l.instruction.symbol = ' ') = false := by
    cases l.instruction <;> rfl
  have hcolon : Char.isDigit ':' = false := rfl
  have hlength : 4 ≤ ((Nat.toDigits 10 l.position).leftpad 4 '0').length := by
    rw [List.length_leftpad]
    exact Nat.le_max_left _ _
  have heven : 2 * l.depth % 2 = 0 ∧ 2 * l.depth / 2 = l.depth := by omega
  simp only [ofChars?, chars, List.takeWhile_append_of_pos hdigits,
    List.dropWhile_append_of_pos hdigits, List.takeWhile_append_of_pos hindent,
    List.dropWhile_append_of_pos hindent, List.takeWhile_cons, List.dropWhile_cons, hcolon, hsymbol,
    List.append_nil, List.length_replicate, Instruction.decode?_symbol, heven.1, heven.2,
    Text.ofDigitChars_leftpad, Bool.false_eq_true, if_false]
  exact if_pos ⟨hlength, trivial, trivial⟩

theorem mapM_ofChars?_chars (lines : List ListingLine) :
    (lines.map chars).mapM ofChars? = some lines := by
  induction lines with
  | nil => rfl
  | cons l lines ih =>
    rw [List.map_cons, List.mapM_cons, ofChars?_chars, ih]
    rfl

end ListingLine

namespace Program

variable {p q : Program} {i n start stop : Nat} {l : ListingLine}

/-! ### The text -/

theorem readListing?_disassemble (p : Program) : readListing? p.disassemble = some p.listing := by
  have htext : p.disassemble.toList =
      (p.listing.map ListingLine.chars).flatMap (· ++ ['\n']) := by
    rw [disassemble, String.toList_join, List.flatMap_map, List.flatMap_map]
    simp only [ListingLine.toList_text]
  have hlines : ∀ line ∈ p.listing.map ListingLine.chars, '\n' ∉ line := by
    intro line hline
    obtain ⟨l, -, rfl⟩ := List.mem_map.1 hline
    exact l.lineFeed_notMem_chars
  rw [readListing?, htext, Text.cutLines_flatMap hlines]
  exact ListingLine.mapM_ofChars?_chars p.listing

/-! ### The instructions -/

theorem map_foldl_listInstruction (is : List (Nat × Instruction))
    (lines : Array ListingLine × Nat) :
    ((is.foldl (fun lines (i, ins) => listInstruction lines i ins) lines).1.toList.map
      fun l => (l.position, l.instruction)) =
      (lines.1.toList.map fun l => (l.position, l.instruction)) ++ is := by
  induction is generalizing lines with
  | nil => exact (List.append_nil _).symm
  | cons x is ih =>
    have hpush : ((listInstruction lines x.1 x.2).1.toList.map
        fun l => (l.position, l.instruction)) =
        (lines.1.toList.map fun l => (l.position, l.instruction)) ++ [x] := by
      unfold listInstruction
      split <;> simp
    rw [List.foldl_cons, ih, hpush, List.append_assoc, List.singleton_append]

theorem map_listing (p : Program) :
    (p.listing.map fun l => (l.position, l.instruction)) = p.instructions :=
  map_foldl_listInstruction p.instructions (#[], 0)

theorem disassemble_eq_iff : p.disassemble = q.disassemble ↔ p.instructions = q.instructions := by
  constructor
  · intro h
    have hlisting : p.listing = q.listing := by
      apply Option.some.inj
      rw [← readListing?_disassemble, h, readListing?_disassemble]
    rw [← map_listing, hlisting, map_listing]
  · intro h
    rw [disassemble, disassemble, listing, listing, h]

/-! ### The depth -/

/-- The number of loops around a character. A loop is not around its own brackets. -/
def loopsAround (p : Program) (i : Nat) : Nat :=
  if p.chars[i]? = some ']' then (p.openBrackets (i + 1)).length else (p.openBrackets i).length

theorem loopsAround_of_ne {c : Char} (h : p.chars[i]? = some c) (hc : c ≠ ']') :
    p.loopsAround i = p.nesting i := by
  rw [loopsAround, if_neg (by rw [h]; simpa using hc), length_openBrackets]

theorem loopsAround_of_close (h : p.chars[i]? = some ']') :
    p.loopsAround i = p.nesting i - 1 := by
  rw [loopsAround, if_pos h, length_openBrackets]
  exact nesting_succ h

theorem listInstruction_of_nesting {ins : Instruction} (h : p.chars[i]? = some ins.symbol)
    (lines : Array ListingLine) :
    listInstruction (lines, p.nesting i) i ins =
      (lines.push ⟨i, p.loopsAround i, ins⟩, p.nesting (i + 1)) := by
  have hnext : p.nesting (i + 1) = depthAfter (p.nesting i) ins.symbol := nesting_succ h
  rw [hnext]
  cases ins with
  | loopEnd => rw [loopsAround_of_close h]; rfl
  | loopStart | increment | decrement | moveLeft | moveRight | output | input =>
    rw [loopsAround_of_ne h (by decide)]
    rfl

/-- The lines before a position are as deep as there are loops around them, and the depth that is
kept for the next one is the nesting there. -/
structure ListedBefore (p : Program) (n : Nat) (lines : Array ListingLine × Nat) : Prop where
  depth_eq : lines.2 = p.nesting n
  depths : ∀ l ∈ lines.1, l.depth = p.loopsAround l.position

theorem listedBefore_size (p : Program) : p.ListedBefore p.size
    (p.instructions.foldl (fun lines (i, ins) => listInstruction lines i ins) (#[], 0)) := by
  apply p.foldl_instructions (P := p.ListedBefore) (f := listInstruction)
  · exact ⟨rfl, fun l hl => absurd hl (Array.not_mem_empty l)⟩
  · intro i ins lines hi hlines
    have heq : lines = (lines.1, p.nesting i) := by rw [← hlines.depth_eq]
    rw [heq, listInstruction_of_nesting hi]
    refine ⟨rfl, ?_⟩
    intro l hl
    rcases Array.mem_push.1 hl with hl | rfl
    · exact hlines.depths l hl
    · rfl
  · intro i c lines hi hc hlines
    have hcomment : isInstruction c = false := by rw [isInstruction, hc]; rfl
    refine ⟨?_, hlines.depths⟩
    rw [hlines.depth_eq, nesting_succ hi, depthAfter_of_comment hcomment]

theorem depth_of_mem_listing (h : l ∈ p.listing) : l.depth = p.loopsAround l.position :=
  p.listedBefore_size.depths l (Array.mem_toList_iff.1 h)

theorem mem_listing :
    l ∈ p.listing ↔
      p.chars[l.position]? = some l.instruction.symbol ∧ l.depth = p.loopsAround l.position := by
  constructor
  · intro h
    have hmem : (l.position, l.instruction) ∈ p.instructions := by
      rw [← map_listing]
      exact List.mem_map_of_mem h
    exact ⟨mem_instructions.1 hmem, depth_of_mem_listing h⟩
  · intro h
    obtain ⟨hc, hdepth⟩ := h
    have hmem := mem_instructions.2 hc
    rw [← map_listing] at hmem
    obtain ⟨k, hk, heq⟩ := List.mem_map.1 hmem
    obtain ⟨hposition, hinstruction⟩ := Prod.mk.inj heq
    have hl : k = l := by
      cases k
      cases l
      have hkdepth := depth_of_mem_listing hk
      simp_all
    exact hl ▸ hk

/-- A closing bracket closes the bracket that was opened last of those that are open. -/
def Matches (p : Program) (start stop : Nat) : Prop :=
  p.chars[stop]? = some ']' ∧ ∃ outer, p.openBrackets stop = start :: outer

theorem Matches.loopsAround_eq (h : p.Matches start stop) :
    p.chars[start]? = some '[' ∧ p.loopsAround start = p.loopsAround stop := by
  obtain ⟨hstop, outer, hopen⟩ := h
  obtain ⟨-, hstart, houter, -⟩ := openBrackets_eq_cons hopen
  refine ⟨hstart, ?_⟩
  rw [loopsAround_of_ne hstart (by decide), loopsAround_of_close hstop, ← length_openBrackets,
    ← length_openBrackets, hopen, houter]
  rfl

theorem Matches.loopsAround_lt (h : p.Matches start stop) (hstart : start < i) (hstop : i < stop) :
    p.loopsAround start < p.loopsAround i := by
  obtain ⟨-, outer, hopen⟩ := h
  obtain ⟨-, hc, houter, hinside⟩ := openBrackets_eq_cons hopen
  have hlength (j : Nat) (hj : start < j) (hj' : j ≤ stop) :
      outer.length < (p.openBrackets j).length := (hinside j hj hj').length_le
  rw [loopsAround_of_ne hc (by decide), ← length_openBrackets, houter, loopsAround]
  split
  · exact hlength (i + 1) (by omega) hstop
  · exact hlength i hstart (by omega)

/-- The text of a listing is read back line by line to the lines that it was written from: they have
the instructions of the program in order with their positions, so two programs have the same listing
exactly if they have the same instructions at the same positions. Each line is as deep as there are
loops around its instruction. So the brackets of a loop stand equally deep and all between them
deeper, and a closing bracket that closes nothing stands at depth zero. -/
theorem readListing?_disassemble_nested (p : Program) :
    (readListing? p.disassemble = some p.listing ∧
      (p.listing.map fun l => (l.position, l.instruction)) = p.instructions) ∧
    (∀ q : Program, p.disassemble = q.disassemble ↔
      ∀ (i : Nat) (ins : Instruction),
        p.chars[i]? = some ins.symbol ↔ q.chars[i]? = some ins.symbol) ∧
    (∀ l ∈ p.listing, l.depth = p.loopsAround l.position) ∧
    (∀ start stop, p.Matches start stop → ∃ depth,
      ⟨start, depth, .loopStart⟩ ∈ p.listing ∧ ⟨stop, depth, .loopEnd⟩ ∈ p.listing ∧
      ∀ l ∈ p.listing, start < l.position → l.position < stop → depth < l.depth) ∧
    ∀ stop, p.chars[stop]? = some ']' → p.openBrackets stop = [] →
      ⟨stop, 0, .loopEnd⟩ ∈ p.listing := by
  refine ⟨⟨p.readListing?_disassemble, p.map_listing⟩, ?_, ?_, ?_, ?_⟩
  · intro q
    rw [disassemble_eq_iff, instructions_eq_iff]
  · intro l hl
    exact depth_of_mem_listing hl
  · intro start stop h
    obtain ⟨hstart, heq⟩ := h.loopsAround_eq
    refine ⟨p.loopsAround start, mem_listing.2 ⟨hstart, rfl⟩, mem_listing.2 ⟨h.1, heq⟩, ?_⟩
    intro l hl hafter hbefore
    rw [depth_of_mem_listing hl]
    exact h.loopsAround_lt hafter hbefore
  · intro stop hstop hopen
    have hnone : p.loopsAround stop = 0 := by
      rw [loopsAround_of_close hstop, ← length_openBrackets, hopen]
      rfl
    exact mem_listing.2 ⟨hstop, hnone.symm⟩

/-- A bracket that closes nothing stands before a loop with a comment in it. -/
theorem readListing?_disassemble_nested_unbalanced :
    let p : Program := ⟨#[']', '[', '!', '-', ']']⟩
    (p.Matches 1 4 ∧ p.openBrackets 0 = []) ∧ ⟨0, 0, .loopEnd⟩ ∈ p.listing ∧
      ∃ depth < 1, ⟨1, depth, .loopStart⟩ ∈ p.listing ∧ ⟨4, depth, .loopEnd⟩ ∈ p.listing := by
  intro p
  have hloop : p.Matches 1 4 := ⟨rfl, [], rfl⟩
  obtain ⟨-, -, -, hnested, hfree⟩ := readListing?_disassemble_nested p
  obtain ⟨depth, hstart, hstop, hinside⟩ := hnested 1 4 hloop
  have hbody : ⟨3, 1, .decrement⟩ ∈ p.listing := by decide
  have hdepth : depth < 1 := hinside _ hbody (by decide) (by decide)
  exact ⟨⟨hloop, rfl⟩, hfree 0 rfl rfl, depth, hdepth, hstart, hstop⟩

end Program

end Brainfuck
