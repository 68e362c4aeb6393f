import Brainfuck.Input.Lines
import Mathlib.Data.List.Basic

/-!
# Pieces of a stream

A stream is cut after each line feed and at its end. There is one way to do so, and it is the one in
which lines are read: the first piece is the first line, and the others are the pieces of the rest.
-/

namespace Brainfuck

/-- A list in pieces, cut after each `stop` and at its end. -/
structure CutAfter {α : Type} (stop : α) (xs : List α) (pieces : List (List α)) : Prop where
  flatten : pieces.flatten = xs
  nonempty : ∀ piece ∈ pieces, piece ≠ []
  /-- A piece goes no further than to the first `stop`. -/
  inside : ∀ piece ∈ pieces, stop ∉ piece.dropLast
  /-- A piece that is not the last one goes as far. -/
  ended : ∀ piece ∈ pieces.dropLast, piece.getLast? = some stop

variable {α : Type} {stop : α} {xs piece line : List α} {pieces rest : List (List α)}

theorem cutAfter_nil (stop : α) : CutAfter stop [] [] where
  flatten := rfl
  nonempty := by simp
  inside := by simp
  ended := by simp

theorem cutAfter_singleton (hne : xs ≠ []) (h : stop ∉ xs) : CutAfter stop xs [xs] where
  flatten := by simp
  nonempty := by simpa using hne
  inside := by simpa using fun hmem => h (List.dropLast_subset xs hmem)
  ended := by simp

theorem CutAfter.cons (h : CutAfter stop xs pieces) (hline : stop ∉ line) :
    CutAfter stop (line ++ stop :: xs) ((line ++ [stop]) :: pieces) where
  flatten := by simp [h.flatten]
  nonempty := by simpa using h.nonempty
  inside := by simpa [hline] using h.inside
  ended := by
    cases pieces with
    | nil => simp
    | cons piece rest => simpa using h.ended

theorem CutAfter.eq_nil (h : CutAfter stop [] pieces) : pieces = [] := by
  cases pieces with
  | nil => rfl
  | cons piece rest =>
    have hnil := (List.append_eq_nil_iff.1 h.flatten).1
    exact absurd hnil (h.nonempty piece List.mem_cons_self)

theorem CutAfter.head (h : CutAfter stop xs (piece :: rest)) : CutAfter stop piece [piece] where
  flatten := by simp
  nonempty := by simpa using h.nonempty piece List.mem_cons_self
  inside := by simpa using h.inside piece List.mem_cons_self
  ended := by simp

theorem CutAfter.tail (h : CutAfter stop xs (piece :: rest)) :
    CutAfter stop rest.flatten rest where
  flatten := rfl
  nonempty := fun p hp => h.nonempty p (List.mem_cons_of_mem _ hp)
  inside := fun p hp => h.inside p (List.mem_cons_of_mem _ hp)
  ended := by
    intro p hp
    apply h.ended
    rw [List.dropLast_cons_of_ne_nil (List.ne_nil_of_mem (List.dropLast_subset rest hp))]
    exact List.mem_cons_of_mem _ hp

theorem CutAfter.drop (h : CutAfter stop xs pieces) (n : Nat) :
    CutAfter stop (pieces.drop n).flatten (pieces.drop n) := by
  induction n generalizing xs pieces with
  | zero => exact h.flatten ▸ h
  | succ n ih =>
    cases pieces with
    | nil => exact cutAfter_nil stop
    | cons piece rest => exact ih h.tail

theorem CutAfter.cons_cases (h : CutAfter stop xs (piece :: rest)) :
    (stop ∉ xs ∧ xs ≠ [] ∧ piece = xs ∧ rest = []) ∨
      ∃ line, stop ∉ line ∧ piece = line ++ [stop] ∧ xs = line ++ stop :: rest.flatten := by
  have hne := h.nonempty piece List.mem_cons_self
  have hinside := h.inside piece List.mem_cons_self
  have hpiece := List.dropLast_append_getLast hne
  by_cases hlast : piece.getLast hne = stop
  · right
    refine ⟨piece.dropLast, hinside, ?_, ?_⟩
    · rw [← hlast, hpiece]
    · rw [← h.flatten, List.flatten_cons, List.append_cons, ← hlast, hpiece]
  · left
    have hrest : rest = [] := by
      by_contra hrest
      have hended := h.ended piece (by simp [List.dropLast_cons_of_ne_nil hrest])
      rw [List.getLast?_eq_some_getLast hne] at hended
      exact hlast (Option.some.inj hended)
    subst hrest
    have hxs : xs = piece := by simpa using h.flatten.symm
    subst hxs
    refine ⟨?_, hne, rfl, rfl⟩
    rw [← hpiece, List.mem_append, List.mem_singleton, not_or]
    exact ⟨hinside, fun heq => hlast heq.symm⟩

theorem exists_cutAfter (stop : α) (xs : List α) : ∃ pieces, CutAfter stop xs pieces := by
  induction hlen : xs.length using Nat.strongRecOn generalizing xs with
  | ind n ih =>
    by_cases hstop : stop ∈ xs
    · obtain ⟨line, after, rfl, hline⟩ := List.eq_append_cons_of_mem hstop
      have hshorter : after.length < n := by
        rw [← hlen, List.length_append, List.length_cons]
        omega
      obtain ⟨pieces, hpieces⟩ := ih _ hshorter after rfl
      exact ⟨_, hpieces.cons hline⟩
    · by_cases hne : xs = []
      · exact ⟨[], hne ▸ cutAfter_nil stop⟩
      · exact ⟨[xs], cutAfter_singleton hne hstop⟩

namespace Lines

theorem splitLine_of_notMem {line : List UInt8} (h : lineFeed ∉ line) :
    splitLine line = (line, []) := by
  have hline : ∀ b ∈ line, decide (b ≠ lineFeed) = true :=
    fun b hb => decide_eq_true fun heq => h (heq ▸ hb)
  have htake : (line ++ []).takeWhile (· ≠ lineFeed) = line ++ [] :=
    List.takeWhile_append_of_pos hline
  have hdrop : (line ++ []).dropWhile (· ≠ lineFeed) = [] := List.dropWhile_append_of_pos hline
  rw [List.append_nil] at htake hdrop
  simp only [splitLine, htake, hdrop]

theorem splitLine_lineFeed {line : List UInt8} (h : lineFeed ∉ line) (rest : List UInt8) :
    splitLine (line ++ lineFeed :: rest) = (line ++ [lineFeed], rest) := by
  have hline : ∀ b ∈ line, decide (b ≠ lineFeed) = true :=
    fun b hb => decide_eq_true fun heq => h (heq ▸ hb)
  have htake : (line ++ lineFeed :: rest).takeWhile (· ≠ lineFeed) = line := by
    rw [List.takeWhile_append_of_pos hline, List.takeWhile_cons_of_neg (by simp), List.append_nil]
  have hdrop : (line ++ lineFeed :: rest).dropWhile (· ≠ lineFeed) = lineFeed :: rest := by
    rw [List.dropWhile_append_of_pos hline, List.dropWhile_cons_of_neg (by simp)]
  simp only [splitLine, htake, hdrop]

end Lines

open Lines

variable {bytes piece : List UInt8} {pieces rest : List (List UInt8)}

theorem CutAfter.splitLine_eq (h : CutAfter lineFeed bytes (piece :: rest)) :
    splitLine bytes = (piece, rest.flatten) := by
  rcases h.cons_cases with ⟨hno, -, rfl, rfl⟩ | ⟨line, hno, rfl, rfl⟩
  · exact splitLine_of_notMem hno
  · exact splitLine_lineFeed hno _

theorem CutAfter.ne_nil (h : CutAfter lineFeed bytes (piece :: rest)) : bytes ≠ [] := by
  rintro rfl
  cases h.eq_nil

theorem CutAfter.unique {others : List (List UInt8)} (h : CutAfter lineFeed bytes pieces)
    (h' : CutAfter lineFeed bytes others) : pieces = others := by
  induction pieces generalizing bytes others with
  | nil =>
    obtain rfl : [] = bytes := h.flatten
    exact h'.eq_nil.symm
  | cons piece rest ih =>
    cases others with
    | nil => exact absurd h'.flatten.symm h.ne_nil
    | cons other others =>
      have hread := h.splitLine_eq.symm.trans h'.splitLine_eq
      obtain rfl := congrArg Prod.fst hread
      have hrest : rest.flatten = others.flatten := congrArg Prod.snd hread
      rw [ih h.tail (hrest ▸ h'.tail)]

end Brainfuck
