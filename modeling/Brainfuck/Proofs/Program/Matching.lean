import Brainfuck.Proofs.Program.Nesting
import Brainfuck.Proofs.Program.Scan
import Mathlib.Order.Bounds.Defs

/-!
# Matching brackets

The scan from an opening bracket looks for the first position up to which there were as many closing
brackets as opening ones. Until then the opening ones are ahead by the depth of the scan.
-/

namespace Brainfuck.Program

variable {p : Program} {i j k s : Nat} {c : Char}

/-- How often a character stands from `i` up to but not including `j`. -/
def occurrences (p : Program) (c : Char) (i j : Nat) : Nat :=
  (p.chars.extract i j).count c

/-- As many brackets are opened as are closed from `i` up to a later position. -/
structure Balances (p : Program) (i r : Nat) : Prop where
  lt : i < r
  le_size : r ≤ p.size
  balance : p.occurrences '[' i r = p.occurrences ']' i r

instance (p : Program) (i r : Nat) : Decidable (p.Balances i r) :=
  decidable_of_iff (i < r ∧ r ≤ p.size ∧ p.occurrences '[' i r = p.occurrences ']' i r)
    ⟨fun h => ⟨h.1, h.2.1, h.2.2⟩, fun h => ⟨h.lt, h.le_size, h.balance⟩⟩

@[simp] theorem occurrences_self (p : Program) (c : Char) (i : Nat) :
    p.occurrences c i i = 0 := by
  rw [occurrences, Array.extract_empty_of_stop_le_start le_rfl]
  rfl

theorem occurrences_succ (hij : i ≤ j) (hj : p.chars[j]? = some c) (d : Char) :
    p.occurrences d i (j + 1) = p.occurrences d i j + if c = d then 1 else 0 := by
  obtain ⟨hlt, rfl⟩ := Array.getElem?_eq_some_iff.1 hj
  have hpush : p.chars.extract i (j + 1) = (p.chars.extract i j).push p.chars[j] := by
    rw [Array.push_extract_getElem hlt, Nat.min_eq_left hij]
  rw [occurrences, hpush, Array.count_push]
  simp [occurrences]

theorem depthAfter_add {depth : Nat} (h : c = ']' → 0 < depth) :
    depthAfter depth c + (if c = ']' then 1 else 0) = depth + if c = '[' then 1 else 0 := by
  unfold depthAfter
  split
  · rfl
  · exact Nat.sub_add_cancel (h rfl)
  · rename_i hopen hclose
    rw [if_neg hopen, if_neg hclose]

/-- Where nothing is closed that is not open, the nesting grows by what the opening brackets are
ahead of the closing ones. -/
theorem nesting_add_occurrences (hij : i ≤ j) (hj : j ≤ p.size)
    (h : ∀ k, i ≤ k → k < j → p.chars[k]? = some ']' → 0 < p.nesting k) :
    p.nesting j + p.occurrences ']' i j = p.nesting i + p.occurrences '[' i j := by
  induction j, hij using Nat.le_induction with
  | base => rw [occurrences_self, occurrences_self]
  | succ j hij ih =>
    have hc : p.chars[j]? = some p.chars[j] := Array.getElem?_eq_getElem hj
    have hbefore := ih (Nat.le_of_succ_le hj) fun k hik hkj => h k hik (Nat.lt_succ_of_lt hkj)
    have hdepth : depthAfter (p.nesting j) p.chars[j] + (if p.chars[j] = ']' then 1 else 0) =
        p.nesting j + if p.chars[j] = '[' then 1 else 0 := by
      apply depthAfter_add
      intro hclose
      exact h j hij (Nat.lt_succ_self j) (hclose ▸ hc)
    rw [nesting_succ hc, occurrences_succ hij hc, occurrences_succ hij hc]
    omega

theorem nesting_lt_of_suffix (h : (s :: p.openBrackets s) <:+ p.openBrackets k) :
    p.nesting s < p.nesting k := by
  have hlen := h.length_le
  rwa [List.length_cons, length_openBrackets, length_openBrackets] at hlen

theorem nesting_since (hs : p.chars[s]? = some '[') (hj : j ≤ p.size) (hsj : s < j)
    (hstand : ∀ k, s < k → k < j → (s :: p.openBrackets s) <:+ p.openBrackets k) :
    p.nesting j + p.occurrences ']' s j = p.nesting s + p.occurrences '[' s j := by
  apply nesting_add_occurrences hsj.le hj
  intro k hsk hkj hk
  rcases Nat.lt_or_eq_of_le hsk with hsk | rfl
  · exact Nat.zero_lt_of_lt (nesting_lt_of_suffix (hstand k hsk hkj))
  · rw [hs] at hk
    cases hk

theorem occurrences_lt (hs : p.chars[s]? = some '[') (hk : k ≤ p.size)
    (hstand : ∀ j, s < j → j ≤ k → (s :: p.openBrackets s) <:+ p.openBrackets j)
    (hsj : s < j) (hjk : j ≤ k) : p.occurrences ']' s j < p.occurrences '[' s j := by
  have hcount := nesting_since hs (hjk.trans hk) hsj fun l hsl hlj =>
    hstand l hsl (hlj.le.trans hjk)
  have hdepth := nesting_lt_of_suffix (hstand j hsj hjk)
  omega

theorem balances_of_close (hs : p.chars[s]? = some '[') (hsk : s < k)
    (hk : p.chars[k]? = some ']') (hopen : p.openBrackets k = s :: p.openBrackets s)
    (hstand : ∀ j, s < j → j ≤ k → (s :: p.openBrackets s) <:+ p.openBrackets j) :
    p.Balances s (k + 1) := by
  have hsize : k + 1 ≤ p.size := (Array.getElem?_eq_some_iff.1 hk).1
  have hback : p.nesting (k + 1) = p.nesting s := by
    rw [← length_openBrackets, openBrackets_succ_of_close hk, hopen, List.tail_cons,
      length_openBrackets]
  have hcount := nesting_since hs hsize (Nat.lt_succ_of_lt hsk) fun j hsj hjk =>
    hstand j hsj (Nat.le_of_lt_succ hjk)
  refine ⟨Nat.lt_succ_of_lt hsk, hsize, ?_⟩
  omega

/-- The scan from an opening bracket never closes what is not open. It ends at the first position up
to which the brackets balance, where a bracket was closed and until where the opening ones are
ahead. If they balance nowhere, it ends with the program and the opening ones stay ahead. -/
theorem isLeast_skipLoop (h : p.chars[i]? = some '[') :
    p.skipLoop? i = some (p.skipLoop i) ∧ i < p.skipLoop i ∧ p.skipLoop i ≤ p.size ∧
    ((∃ r, p.Balances i r) →
      IsLeast {r | p.Balances i r} (p.skipLoop i) ∧ p.chars[p.skipLoop i - 1]? = some ']' ∧
        ∀ j, i < j → j < p.skipLoop i → p.occurrences ']' i j < p.occurrences '[' i j) ∧
    ((¬ ∃ r, p.Balances i r) →
      p.skipLoop i = p.size ∧
        ∀ j, i < j → j ≤ p.size → p.occurrences ']' i j < p.occurrences '[' i j) := by
  have hlt : i < p.size := (Array.getElem?_eq_some_iff.1 h).1
  refine ⟨skipLoop?_of_open h, ?_⟩
  rcases skipLoop_cases h with ⟨k, hik, hk, hopen, hskip, hstand⟩ | ⟨hskip, hstand⟩
  · have hbalances := balances_of_close h hik hk hopen hstand
    have hahead : ∀ j, i < j → j < k + 1 → p.occurrences ']' i j < p.occurrences '[' i j :=
      fun j hij hjk =>
        occurrences_lt h (Nat.le_of_succ_le hbalances.le_size) hstand hij (Nat.le_of_lt_succ hjk)
    rw [hskip]
    refine ⟨hbalances.lt, hbalances.le_size, fun _ => ⟨⟨hbalances, ?_⟩, hk, hahead⟩, ?_⟩
    · intro r hr
      by_contra hrk
      exact absurd hr.balance (hahead r hr.lt (Nat.lt_of_not_le hrk)).ne'
    · intro hnowhere
      exact absurd ⟨k + 1, hbalances⟩ hnowhere
  · have hahead : ∀ j, i < j → j ≤ p.size → p.occurrences ']' i j < p.occurrences '[' i j :=
      fun j => occurrences_lt h le_rfl hstand
    rw [hskip]
    refine ⟨hlt, Nat.le_refl _, ?_, fun _ => ⟨rfl, hahead⟩⟩
    rintro ⟨r, hr⟩
    exact absurd hr.balance (hahead r hr.lt hr.le_size).ne'

/-- Two nested loops that are closed, and behind them one that is not. -/
theorem isLeast_skipLoop_nested :
    let p : Program := ⟨#['[', '+', '[', ']', ']', '+', '[', '-']⟩
    (p.chars[0]? = some '[' ∧ p.skipLoop 0 = 5 ∧ p.skipLoop? 0 = some 5) ∧
      p.chars[6]? = some '[' ∧ p.skipLoop 6 = 8 ∧ p.skipLoop? 6 = some 8 := by
  intro p
  have h₀ : p.chars[0]? = some '[' := rfl
  have h₆ : p.chars[6]? = some '[' := rfl
  have hbalances : p.Balances 0 5 := by decide
  have hearlier : ∀ r < 5, ¬ p.Balances 0 r := by decide
  have hnowhere : ∀ r ≤ 8, ¬ p.Balances 6 r := by decide
  obtain ⟨hscan₀, -, -, hleast, -⟩ := isLeast_skipLoop h₀
  obtain ⟨hscan₆, -, -, -, hend⟩ := isLeast_skipLoop h₆
  have hskip₀ : p.skipLoop 0 = 5 := by
    obtain ⟨⟨hmem, hle⟩, -⟩ := hleast ⟨5, hbalances⟩
    apply Nat.le_antisymm (hle hbalances)
    by_contra hlt
    exact hearlier _ (Nat.lt_of_not_le hlt) hmem
  have hskip₆ : p.skipLoop 6 = 8 := (hend fun ⟨r, hr⟩ => hnowhere r hr.le_size hr).1
  exact ⟨⟨h₀, hskip₀, hskip₀ ▸ hscan₀⟩, h₆, hskip₆, hskip₆ ▸ hscan₆⟩

end Brainfuck.Program
