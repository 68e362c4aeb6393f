import Brainfuck.Program.Span
import Mathlib.Data.List.Range

/-!
# The instructions of a program

They stand in the order of their positions, so that a program lists the same instructions as another
one exactly if it has the same ones at the same positions. What a fold over them keeps is said
character by character.
-/

namespace Brainfuck

theorem eq_of_pairwise_of_mem_iff {α : Type} {r : α → α → Prop} {xs ys : List α}
    (hr : ∀ a ∈ xs, ∀ b ∈ xs, r a b → ¬ r b a) (hxs : xs.Pairwise r) (hys : ys.Pairwise r)
    (hmem : ∀ a, a ∈ xs ↔ a ∈ ys) : xs = ys := by
  have hnodup (l : List α) (hl : l.Pairwise r) (hle : ∀ a ∈ l, a ∈ xs) : l.Nodup := by
    apply hl.imp_of_mem
    intro a b ha hb hab heq
    exact hr a (hle a ha) b (hle b hb) hab (heq ▸ hab)
  have hperm : xs.Perm ys := by
    apply (List.perm_ext_iff_of_nodup _ _).2 hmem
    · exact hnodup xs hxs fun a ha => ha
    · exact hnodup ys hys fun a ha => (hmem a).2 ha
  apply hperm.eq_of_pairwise _ hxs hys
  intro a b ha hb hab hba
  exact absurd hba (hr a ha b ((hmem b).2 hb) hab)

namespace Program

variable {p q : Program}

section Fold

variable {σ : Type} {P : Nat → σ → Prop} {f : σ → Nat → Instruction → σ} {s : σ} {k : Nat}
  {cs : List Char}

theorem foldl_instructions_of_drop
    (htake : ∀ i ins s, p.chars[i]? = some ins.symbol → P i s → P (i + 1) (f s i ins))
    (hpass : ∀ i c s, p.chars[i]? = some c → Instruction.decode? c = none → P i s → P (i + 1) s)
    (hdrop : p.chars.toList.drop k = cs) (hs : P k s) :
    P (k + cs.length)
      (((cs.zipIdx k).filterMap fun (c, i) => (Instruction.decode? c).map (i, ·)).foldl
        (fun s (i, ins) => f s i ins) s) := by
  induction cs generalizing k s with
  | nil => exact hs
  | cons c cs ih =>
    have hc : p.chars[k]? = some c := by
      have hhead := congrArg List.head? hdrop
      rwa [List.head?_drop, Array.getElem?_toList] at hhead
    have hrest : p.chars.toList.drop (k + 1) = cs := by
      rw [← List.tail_drop, hdrop, List.tail_cons]
    rw [List.zipIdx_cons, List.filterMap_cons, List.length_cons, Nat.add_comm cs.length,
      ← Nat.add_assoc]
    cases hd : Instruction.decode? c with
    | none =>
      simp only [hd, Option.map_none]
      exact ih hrest (hpass k c s hc hd hs)
    | some ins =>
      simp only [hd, Option.map_some]
      obtain rfl := Instruction.decode?_eq_some_iff.1 hd
      exact ih hrest (htake k ins s hc hs)

/-- What holds at the start, and is kept where an instruction is taken in and where a comment is
passed over, holds at the end of a program. -/
theorem foldl_instructions (p : Program) (hstart : P 0 s)
    (htake : ∀ i ins s, p.chars[i]? = some ins.symbol → P i s → P (i + 1) (f s i ins))
    (hpass : ∀ i c s, p.chars[i]? = some c → Instruction.decode? c = none → P i s → P (i + 1) s) :
    P p.size (p.instructions.foldl (fun s (i, ins) => f s i ins) s) := by
  have hend := foldl_instructions_of_drop htake hpass List.drop_zero hstart
  rwa [Nat.zero_add, Array.length_toList] at hend

end Fold

theorem instructions_pairwise (p : Program) : p.instructions.Pairwise (·.1 < ·.1) := by
  have hpositions : p.chars.toList.zipIdx.Pairwise (·.2 < ·.2) := by
    have hrange : (p.chars.toList.zipIdx.map Prod.snd).Pairwise (· < ·) := by
      rw [List.zipIdx_map_snd]
      exact List.pairwise_lt_range'
    exact List.pairwise_map.1 hrange
  apply List.Pairwise.filterMap _ _ hpositions
  intro a b hab x hx y hy
  obtain ⟨_, _, rfl⟩ := Option.map_eq_some_iff.1 hx
  obtain ⟨_, _, rfl⟩ := Option.map_eq_some_iff.1 hy
  exact hab

theorem instructions_eq_iff :
    p.instructions = q.instructions ↔
      ∀ (i : Nat) (ins : Instruction),
        p.chars[i]? = some ins.symbol ↔ q.chars[i]? = some ins.symbol := by
  constructor
  · intro h i ins
    rw [← mem_instructions, ← mem_instructions, h]
  · intro h
    apply eq_of_pairwise_of_mem_iff _ p.instructions_pairwise q.instructions_pairwise
    · intro x
      rw [mem_instructions, mem_instructions]
      exact h x.1 x.2
    · intro x _ y _ hxy hyx
      exact Nat.lt_asymm hxy hyx

end Program

end Brainfuck
