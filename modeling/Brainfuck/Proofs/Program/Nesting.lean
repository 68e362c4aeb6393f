import Brainfuck.Program.Brackets
import Mathlib.Data.List.Infix

/-!
# Nesting

The brackets that are open at a position are a stack, and what lies below an open bracket in that
stack does not change as long as it is open. So the scan forward from an opening bracket stops just
past the closing bracket at which the stack is back to what it was.
-/

namespace Brainfuck.Program

variable {p : Program} {n i k s : Nat} {rest : List Nat}

/-- How many brackets are open before a position. -/
def nesting (p : Program) (n : Nat) : Nat :=
  (p.chars.toList.take n).foldl depthAfter 0

/-- Every closing bracket closes one. -/
def Opened (p : Program) : Prop :=
  ∀ i, p.chars[i]? = some ']' → p.openBrackets i ≠ []

theorem nesting_succ {c : Char} (h : p.chars[n]? = some c) :
    p.nesting (n + 1) = depthAfter (p.nesting n) c := by
  have hc : p.chars.toList[n]? = some c := by simpa using h
  obtain ⟨hn, rfl⟩ := List.getElem?_eq_some_iff.1 hc
  rw [nesting, List.take_succ_eq_append_getElem hn, List.foldl_append]
  rfl

theorem openBrackets_succ_of_getElem? {c : Char} (h : p.chars[n]? = some c) :
    p.openBrackets (n + 1) = openAfter (p.openBrackets n) n c := by
  obtain ⟨hn, rfl⟩ := Array.getElem?_eq_some_iff.1 h
  exact p.openBrackets_succ n hn

theorem openBrackets_succ_of_none (h : p.chars[n]? = none) :
    p.openBrackets (n + 1) = p.openBrackets n := by
  have hn : p.chars.toList.length ≤ n := by simpa using h
  rw [openBrackets, openBrackets, List.take_of_length_le hn, List.take_of_length_le (by omega)]

theorem openAfter_of_ne {c : Char} {stack : List Nat} (h₁ : c ≠ '[') (h₂ : c ≠ ']') :
    openAfter stack n c = stack := by
  unfold openAfter
  split <;> simp_all

theorem openBrackets_succ_of_ne {c : Char} (h : p.chars[n]? = some c) (h₁ : c ≠ '[')
    (h₂ : c ≠ ']') : p.openBrackets (n + 1) = p.openBrackets n := by
  rw [openBrackets_succ_of_getElem? h, openAfter_of_ne h₁ h₂]

theorem openBrackets_succ_of_open (h : p.chars[n]? = some '[') :
    p.openBrackets (n + 1) = n :: p.openBrackets n :=
  openBrackets_succ_of_getElem? h

theorem openBrackets_succ_of_close (h : p.chars[n]? = some ']') :
    p.openBrackets (n + 1) = (p.openBrackets n).tail :=
  openBrackets_succ_of_getElem? h

theorem length_openBrackets (p : Program) (n : Nat) :
    (p.openBrackets n).length = p.nesting n := by
  induction n with
  | zero => simp [nesting]
  | succ n ih =>
    cases hc : p.chars[n]? with
    | some c => rw [openBrackets_succ_of_getElem? hc, length_openAfter, ih, nesting_succ hc]
    | none =>
      have hn : p.chars.toList.length ≤ n := by simpa using hc
      rw [openBrackets_succ_of_none hc, ih, nesting, nesting, List.take_of_length_le hn,
        List.take_of_length_le (by omega)]

/-! ### Below an open bracket -/

/-- The innermost open bracket at a position: from it on, the stack has stood on it and on what was
open before it. -/
structure Innermost (p : Program) (s : Nat) (rest : List Nat) (n : Nat) : Prop where
  lt : s < n
  opens : p.chars[s]? = some '['
  below : p.openBrackets s = rest
  stands : ∀ j, s < j → j ≤ n → (s :: rest) <:+ p.openBrackets j

theorem Innermost.succ (hn : p.Innermost s rest n) (h : p.openBrackets (n + 1) = s :: rest) :
    p.Innermost s rest (n + 1) := by
  refine ⟨Nat.lt_succ_of_lt hn.lt, hn.opens, hn.below, fun j hj hjn => ?_⟩
  rcases Nat.lt_or_eq_of_le hjn with hlt | rfl
  · exact hn.stands j hj (Nat.le_of_lt_succ hlt)
  · rw [h]

theorem innermost_of_open (hc : p.chars[n]? = some '[') :
    p.Innermost n (p.openBrackets n) (n + 1) := by
  refine ⟨Nat.lt_succ_self n, hc, rfl, fun j hj hjn => ?_⟩
  obtain rfl : j = n + 1 := by omega
  rw [openBrackets_succ_of_open hc]

theorem Innermost.uncover {x : Nat} (hs : p.Innermost s rest x)
    (hx : p.Innermost x (s :: rest) n) : p.Innermost s rest n := by
  refine ⟨hs.lt.trans hx.lt, hs.opens, hs.below, fun j hj hjn => ?_⟩
  by_cases hjx : j ≤ x
  · exact hs.stands j hj hjx
  · exact (List.suffix_cons x _).trans (hx.stands j (Nat.lt_of_not_le hjx) hjn)

theorem openBrackets_eq_cons (h : p.openBrackets n = s :: rest) : p.Innermost s rest n := by
  -- The induction is strong, since a closing bracket uncovers a bracket opened before its own.
  induction n using Nat.strong_induction_on generalizing s rest with
  | _ n ih =>
    cases n with
    | zero => simp at h
    | succ n =>
      have hn : n < n + 1 := Nat.lt_succ_self n
      cases hc : p.chars[n]? with
      | none => exact (ih n hn (openBrackets_succ_of_none hc ▸ h)).succ h
      | some c =>
        by_cases h₁ : c = '['
        · subst h₁
          rw [openBrackets_succ_of_open hc] at h
          obtain ⟨rfl, rfl⟩ := List.cons.inj h
          exact innermost_of_open hc
        by_cases h₂ : c = ']'
        · subst h₂
          have htail := openBrackets_succ_of_close hc
          cases hx : p.openBrackets n with
          | nil => simp [htail, hx] at h
          | cons x below =>
            obtain rfl : below = s :: rest := by simpa [htail, hx] using h
            have hxn := ih n hn hx
            have hsx := ih x (hxn.lt.trans hn) hxn.below
            exact (hsx.uncover hxn).succ h
        · exact (ih n hn (openBrackets_succ_of_ne hc h₁ h₂ ▸ h)).succ h

theorem openBrackets_pairwise (p : Program) (n : Nat) : (p.openBrackets n).Pairwise (· > ·) := by
  have key : ∀ l n, p.openBrackets n = l → l.Pairwise (· > ·) ∧ ∀ s ∈ l, s < n := by
    intro l
    induction l with
    | nil => simp
    | cons s rest ih =>
      intro n h
      obtain ⟨hlt, -, hrest, -⟩ := openBrackets_eq_cons h
      obtain ⟨hpair, hmem⟩ := ih s hrest
      refine ⟨List.pairwise_cons.2 ⟨hmem, hpair⟩, fun j hj => ?_⟩
      rcases List.mem_cons.1 hj with rfl | hj
      · exact hlt
      · exact (hmem j hj).trans hlt
  exact (key _ n rfl).1

/-- As long as the stack does not get lower than it was, it stands on what it was. -/
theorem openBrackets_suffix (hik : i ≤ k)
    (h : ∀ j, i ≤ j → j ≤ k → p.nesting i ≤ p.nesting j) :
    p.openBrackets i <:+ p.openBrackets k := by
  induction k, hik using Nat.le_induction with
  | base => exact List.suffix_rfl
  | succ k hik ih =>
    have hsuffix := ih fun j hj hjk => h j hj (by omega)
    cases hc : p.chars[k]? with
    | none => rwa [openBrackets_succ_of_none hc]
    | some c =>
      by_cases h₁ : c = '['
      · subst h₁
        rw [openBrackets_succ_of_open hc]
        exact hsuffix.trans (List.suffix_cons _ _)
      by_cases h₂ : c = ']'
      · subst h₂
        have hlen := h (k + 1) (by omega) (by omega)
        rw [← length_openBrackets, ← length_openBrackets] at hlen
        rw [openBrackets_succ_of_close hc] at hlen ⊢
        cases hx : p.openBrackets k with
        | nil => simpa [hx] using hsuffix
        | cons x below =>
          rw [hx] at hsuffix hlen
          rcases List.suffix_cons_iff.1 hsuffix with heq | hbelow
          · rw [heq, List.length_cons, List.tail_cons] at hlen
            omega
          · exact hbelow
      · rwa [openBrackets_succ_of_ne hc h₁ h₂]

/-! ### The scan forward -/

theorem depthAfter_sub {d b : Nat} (c : Char) (h : b ≤ d) :
    depthAfter (d - b) c = depthAfter d c - b := by
  unfold depthAfter
  split <;> omega

theorem le_depthAfter (d : Nat) (c : Char) : d ≤ depthAfter d c + 1 := by
  unfold depthAfter
  split <;> omega

theorem le_depthAfter_of_ne {d : Nat} {c : Char} (h : c ≠ ']') : d ≤ depthAfter d c := by
  unfold depthAfter
  split
  · omega
  · exact absurd rfl h
  · exact le_rfl

/-- The scan from inside of a bracket stops where the nesting is first back to `b`. -/
theorem returnPosition_cases {b : Nat} (h : b < p.nesting i) (hi : i ≤ p.size) :
    (∃ k, i ≤ k ∧ k < p.size ∧ p.nesting (k + 1) = b ∧
      p.returnPosition (p.nesting i - b) i = k + 1 ∧
      ∀ j, i ≤ j → j ≤ k → b < p.nesting j) ∨
    (p.returnPosition (p.nesting i - b) i = p.size ∧
      ∀ j, i ≤ j → j ≤ p.size → b < p.nesting j) := by
  induction hm : p.size - i generalizing i with
  | zero =>
    obtain rfl : i = p.size := by omega
    right
    refine ⟨?_, fun j hj hj' => ?_⟩
    · rw [returnPosition, dif_neg (by simp [size])]
      rfl
    · obtain rfl : j = p.size := by omega
      exact h
  | succ d ih =>
    have hlt : i < p.chars.size := by simp only [size] at hm; omega
    have hnext : p.nesting (i + 1) = depthAfter (p.nesting i) p.chars[i] :=
      nesting_succ (Array.getElem?_eq_getElem hlt)
    have hscan : p.returnPosition (p.nesting i - b) i =
        if p.nesting (i + 1) - b = 0 then i + 1
        else p.returnPosition (p.nesting (i + 1) - b) (i + 1) := by
      rw [returnPosition, dif_pos hlt, depthAfter_sub _ h.le, hnext]
    have hge : b ≤ p.nesting (i + 1) := by
      have := le_depthAfter (p.nesting i) p.chars[i]
      omega
    by_cases hback : p.nesting (i + 1) = b
    · left
      refine ⟨i, le_rfl, hlt, hback, by rw [hscan, if_pos (by omega)], fun j hj hj' => ?_⟩
      obtain rfl : j = i := by omega
      exact h
    · rw [hscan, if_neg (by omega)]
      have here {k : Nat} (hk : ∀ j, i + 1 ≤ j → j ≤ k → b < p.nesting j) :
          ∀ j, i ≤ j → j ≤ k → b < p.nesting j := by
        intro j hj hjk
        rcases Nat.lt_or_eq_of_le hj with hlt' | rfl
        · exact hk j hlt' hjk
        · exact h
      rcases ih (i := i + 1) (by omega) (by simp only [size]; omega) (by omega) with
        ⟨k, hk, hks, hkb, hr, hopen⟩ | ⟨hr, hopen⟩
      · exact .inl ⟨k, by omega, hks, hkb, hr, here hopen⟩
      · exact .inr ⟨hr, here hopen⟩

theorem close_of_nesting_succ_lt (hk : k < p.size) (h : p.nesting (k + 1) < p.nesting k) :
    p.chars[k]? = some ']' ∧ p.nesting k = p.nesting (k + 1) + 1 := by
  have hc : p.chars[k]? = some p.chars[k] := Array.getElem?_eq_getElem hk
  have hnext := nesting_succ hc
  have hclose : p.chars[k] = ']' := by
    by_contra hne
    have := le_depthAfter_of_ne (d := p.nesting k) hne
    omega
  rw [hclose] at hc hnext
  have hback : p.nesting (k + 1) = p.nesting k - 1 := hnext
  exact ⟨hc, by omega⟩

theorem skipLoop_eq (h : p.chars[s]? = some '[') :
    p.skipLoop s = p.returnPosition (p.nesting (s + 1) - p.nesting s) (s + 1) := by
  obtain ⟨hlt, hc⟩ := Array.getElem?_eq_some_iff.1 h
  rw [skipLoop, returnPosition, dif_pos hlt, nesting_succ h]
  simp [hc, depthAfter]

theorem skipLoop_cases (h : p.chars[s]? = some '[') :
    (∃ k, s < k ∧ p.chars[k]? = some ']' ∧ p.openBrackets k = s :: p.openBrackets s ∧
      p.skipLoop s = k + 1 ∧
      ∀ j, s < j → j ≤ k → (s :: p.openBrackets s) <:+ p.openBrackets j) ∨
    (p.skipLoop s = p.size ∧
      ∀ j, s < j → j ≤ p.size → (s :: p.openBrackets s) <:+ p.openBrackets j) := by
  obtain ⟨hlt, -⟩ := Array.getElem?_eq_some_iff.1 h
  have hstart := openBrackets_succ_of_open h
  have hdepth : p.nesting (s + 1) = p.nesting s + 1 := nesting_succ h
  -- Where the nesting stays above that of the bracket, the stack stands on the bracket.
  have stands {k : Nat} (hk : ∀ j, s + 1 ≤ j → j ≤ k → p.nesting s < p.nesting j) :
      ∀ j, s < j → j ≤ k → (s :: p.openBrackets s) <:+ p.openBrackets j := by
    intro j hj hjk
    rw [← hstart]
    refine openBrackets_suffix hj fun j' hj' hjj' => ?_
    have := hk j' hj' (by omega)
    omega
  rw [skipLoop_eq h]
  rcases returnPosition_cases (p := p) (b := p.nesting s) (i := s + 1) (by omega)
    (by simp only [size]; omega) with ⟨k, hk, hks, hkb, hr, hopen⟩ | ⟨hr, hopen⟩
  · left
    have hsuffix := stands hopen k (by omega) le_rfl
    have habove := hopen k hk le_rfl
    obtain ⟨hc, hlen⟩ := close_of_nesting_succ_lt hks (by omega)
    refine ⟨k, by omega, hc, (hsuffix.eq_of_length ?_).symm, hr, stands hopen⟩
    rw [List.length_cons, length_openBrackets, length_openBrackets, hlen, hkb]
  · exact .inr ⟨hr, stands hopen⟩

/-- The closing bracket at which a bracket is the innermost open one is where the scan from that
bracket ends. -/
theorem skipLoop_of_openBrackets (hk : p.chars[k]? = some ']')
    (h : p.openBrackets k = s :: rest) : p.skipLoop s = k + 1 := by
  obtain ⟨hlt, hs, rfl, hsuffix⟩ := openBrackets_eq_cons h
  obtain ⟨hks, -⟩ := Array.getElem?_eq_some_iff.1 hk
  have hafter : p.openBrackets (k + 1) = p.openBrackets s := by
    rw [openBrackets_succ_of_close hk, h, List.tail_cons]
  have habsurd {l : List Nat} (hl : l = p.openBrackets s)
      (hl' : (s :: p.openBrackets s) <:+ l) : False := by
    have : (p.openBrackets s).length + 1 ≤ (p.openBrackets s).length := by
      simpa [hl] using hl'.length_le
    omega
  rcases skipLoop_cases hs with ⟨k', hk', hc', hopen', hskip, hstand⟩ | ⟨-, hstand⟩
  · have hafter' : p.openBrackets (k' + 1) = p.openBrackets s := by
      rw [openBrackets_succ_of_close hc', hopen', List.tail_cons]
    rcases Nat.lt_trichotomy k k' with hlt' | rfl | hlt'
    · exact (habsurd hafter (hstand (k + 1) (by omega) hlt')).elim
    · exact hskip
    · exact (habsurd hafter' (hsuffix (k' + 1) (by omega) hlt')).elim
  · exact (habsurd hafter (hstand (k + 1) (by omega) hks)).elim

theorem skipLoop_le (h : p.chars[s]? = some '[') : p.skipLoop s ≤ p.size := by
  rcases skipLoop_cases h with ⟨k, -, hc, -, hr, -⟩ | ⟨hr, -⟩
  · obtain ⟨hk, -⟩ := Array.getElem?_eq_some_iff.1 hc
    rw [hr]
    exact hk
  · exact hr.le

theorem openBrackets_skipLoop (h : p.chars[s]? = some '[')
    (hin : p.skipLoop s < p.size ∨ p.Closed) :
    p.openBrackets (p.skipLoop s) = p.openBrackets s := by
  rcases skipLoop_cases h with ⟨k, -, hc, hk, hr, -⟩ | ⟨hr, hstand⟩
  · rw [hr, openBrackets_succ_of_close hc, hk, List.tail_cons]
  · obtain ⟨hlt, -⟩ := Array.getElem?_eq_some_iff.1 h
    rcases hin with hin | hin
    · omega
    · have := (hstand p.size hlt le_rfl).length_le
      rw [show p.openBrackets p.size = [] from hin] at this
      simp at this

end Brainfuck.Program
